import Lidas.Lib.Fifo
import Lidas.Lib.Runs
import Mathlib.Data.PNat.Basic

/-!
# The ring queue of `queue.c`

`lida_queue_h` keeps the backend descriptors of a node and the timers of all connections. It
takes elements at `head` and gives them back at `tail`, and one slot stays free: with `max - 1`
elements stored, `head` is just behind `tail` around the ring. `Q_IS_FULL` asks for
`head + 1 == tail`, which it is unless `tail` is slot 0; then `head` is the last slot, and
`queue_in` fills it and moves `head` to `tail`, as in an empty queue.

`Paired` runs the queue beside an ideal one of capacity `max - 1`. `results_iff_clear` says
that the two differ exactly when `queue_in` is called on such a queue.
-/

namespace Lidas

/-- `struct lida_queue_h`. Both positions are slots of the array. -/
structure LidaQueue where
  max : ℕ
  head : ℕ
  tail : ℕ
  data : ℕ → ℕ
  head_lt : head < max
  tail_lt : tail < max

namespace LidaQueue

/-- `queue_init`; `calloc` clears the array. -/
def queueInit (max : ℕ) (h : 0 < max) : LidaQueue where
  max := max
  head := 0
  tail := 0
  data := fun _ => 0
  head_lt := h
  tail_lt := h

/-- `Q_IS_FULL`. -/
def QIsFull (h : LidaQueue) : Prop := h.head + 1 = h.tail

instance (h : LidaQueue) : Decidable h.QIsFull := inferInstanceAs (Decidable (_ = _))

/-- `queue_in`: the value returned and the queue. -/
def queueIn (h : LidaQueue) (d : ℕ) : ℤ × LidaQueue :=
  if h.QIsFull then (-1, h)
  else (0, { h with
    data := Function.update h.data h.head d
    head := Ring.next h.max h.head
    head_lt := Ring.next_lt h.head_lt })

/-- `queue_out`: the pointer returned, `0` for `NULL`, and the queue. -/
def queueOut (h : LidaQueue) : ℕ × LidaQueue :=
  if h.tail = h.head then (0, h)
  else (h.data h.tail, { h with
    tail := Ring.next h.max h.tail
    tail_lt := Ring.next_lt h.tail_lt })

/-- The number of elements between `tail` and `head`. -/
def count (h : LidaQueue) : ℕ :=
  if h.tail ≤ h.head then h.head - h.tail else h.head + h.max - h.tail

/-- The elements between `tail` and `head`, the oldest first. -/
def entries (h : LidaQueue) : List ℕ := Ring.window h.data h.max h.tail h.count

/-- No more than one slot is free. -/
def Full (h : LidaQueue) : Prop := h.count = h.max - 1

instance (h : LidaQueue) : Decidable h.Full := inferInstanceAs (Decidable (_ = _))

variable (h : LidaQueue)

@[simp] theorem entries_queueInit (max : ℕ) (hmax : 0 < max) :
    (queueInit max hmax).entries = [] := rfl

/-- There are as many entries as are counted. -/
theorem length_entries : h.entries.length = h.count := by simp [entries]

/-- One slot is always empty. -/
theorem count_lt : h.count < h.max := by
  have := h.head_lt
  have := h.tail_lt
  rw [count]
  split_ifs <;> omega

/-- `head` is the slot behind the elements. -/
theorem head_eq : h.head = (h.tail + h.count) % h.max := by
  have hhead := h.head_lt
  have htail := h.tail_lt
  rw [count]
  split_ifs with hle
  · rw [Nat.add_sub_cancel' hle, Nat.mod_eq_of_lt hhead]
  · have hsum : h.tail + (h.head + h.max - h.tail) = h.head + h.max := by omega
    rw [hsum, Nat.add_mod_right, Nat.mod_eq_of_lt hhead]

/-- `Q_IS_FULL` misses the full queue whose oldest element is in slot 0. -/
theorem qIsFull_iff : h.QIsFull ↔ h.Full ∧ h.tail ≠ 0 := by
  have hhead := h.head_lt
  have htail := h.tail_lt
  rw [QIsFull, Full, count]
  split_ifs <;> omega

theorem entries_eq_nil : h.entries = [] ↔ h.tail = h.head := by
  have hhead := h.head_lt
  have htail := h.tail_lt
  rw [← List.length_eq_zero_iff, length_entries, count]
  split_ifs <;> omega

/-- A queue that is not full takes an element at its end. -/
theorem queueIn_of_not_full (d : ℕ) (hfull : ¬h.Full) :
    (h.queueIn d).1 = 0 ∧ (h.queueIn d).2.entries = h.entries ++ [d] ∧
      (h.queueIn d).2.tail = h.tail ∧ (h.queueIn d).2.max = h.max := by
  have hhead := h.head_lt
  have htail := h.tail_lt
  have hcount := h.count_lt
  have hnot : ¬h.QIsFull := fun hq => hfull (h.qIsFull_iff.mp hq).1
  rw [queueIn, if_neg hnot]
  refine ⟨rfl, ?_, rfl, rfl⟩
  have hsucc : count { h with
      data := Function.update h.data h.head d
      head := Ring.next h.max h.head
      head_lt := Ring.next_lt h.head_lt } = h.count + 1 := by
    simp only [Full, count, Ring.next] at hfull ⊢
    split_ifs at hfull ⊢ <;> omega
  rw [entries, hsucc, entries]
  dsimp only
  rw [h.head_eq]
  exact Ring.window_update h.data d hcount

/-- A full queue refuses the element, or loses all its elements. -/
theorem queueIn_of_full (d : ℕ) (hfull : h.Full) :
    (h.tail ≠ 0 ∧ h.queueIn d = (-1, h)) ∨
      (h.tail = 0 ∧ (h.queueIn d).1 = 0 ∧ (h.queueIn d).2.entries = []) := by
  by_cases htail : h.tail = 0
  · have hnot : ¬h.QIsFull := fun hq => (h.qIsFull_iff.mp hq).2 htail
    refine Or.inr ⟨htail, ?_⟩
    rw [queueIn, if_neg hnot]
    refine ⟨rfl, (entries_eq_nil _).mpr ?_⟩
    have hhead := h.head_lt
    have hlast : h.head = h.max - 1 := by
      rw [Full, count] at hfull
      split_ifs at hfull <;> omega
    dsimp only
    rw [Ring.next, if_pos hlast, htail]
  · exact Or.inl ⟨htail, by rw [queueIn, if_pos (h.qIsFull_iff.mpr ⟨hfull, htail⟩)]⟩

/-- An empty queue has nothing to give. -/
theorem queueOut_of_nil (hnil : h.entries = []) : h.queueOut = (0, h) := by
  rw [queueOut, if_pos (h.entries_eq_nil.mp hnil)]

/-- The oldest element is given back. -/
theorem queueOut_of_cons {d : ℕ} {ds : List ℕ} (hcons : h.entries = d :: ds) :
    h.queueOut.1 = d ∧ h.queueOut.2.entries = ds ∧
      h.queueOut.2.tail = Ring.next h.max h.tail ∧ h.queueOut.2.max = h.max := by
  have hhead := h.head_lt
  have htail := h.tail_lt
  have hne : h.tail ≠ h.head := fun heq => by
    rw [h.entries_eq_nil.mpr heq] at hcons
    simp at hcons
  have hpred : h.count = count { h with
      tail := Ring.next h.max h.tail
      tail_lt := Ring.next_lt h.tail_lt } + 1 := by
    simp only [count, Ring.next]
    split_ifs <;> omega
  rw [entries, hpred, Ring.window_succ h.data htail] at hcons
  obtain ⟨hd, hds⟩ := List.cons.inj hcons
  rw [queueOut, if_neg hne]
  exact ⟨hd, hds, rfl, rfl⟩

/-- Taking out an entry counts one less. -/
theorem count_queueOut (hne : h.entries ≠ []) :
    h.queueOut.2.count + 1 = h.count ∧ h.queueOut.2.max = h.max := by
  obtain ⟨d, ds, hcons⟩ := List.exists_cons_of_ne_nil hne
  obtain ⟨-, hentries, -, hmax⟩ := h.queueOut_of_cons hcons
  rw [← length_entries, ← length_entries, hentries, hcons]
  exact ⟨rfl, hmax⟩

/-- Putting one in counts one more, unless the queue is full. -/
theorem count_queueIn (d : ℕ) (hfull : ¬h.Full) :
    (h.queueIn d).2.count = h.count + 1 ∧ (h.queueIn d).2.max = h.max := by
  obtain ⟨-, hentries, -, hmax⟩ := h.queueIn_of_not_full d hfull
  rw [← length_entries, ← length_entries, hentries, List.length_append]
  exact ⟨rfl, hmax⟩

/-- With an element taken out, there is room. -/
theorem not_full_queueOut (hne : h.entries ≠ []) : ¬h.queueOut.2.Full := by
  obtain ⟨hcount, hmax⟩ := h.count_queueOut hne
  have hlt := h.count_lt
  rw [Full, hmax]
  omega

/-- An element that is taken out and put in again leaves as much room. -/
theorem full_requeue (d : ℕ) (hne : h.entries ≠ []) :
    (h.queueOut.2.queueIn d).2.Full ↔ h.Full := by
  obtain ⟨hout, hmax⟩ := h.count_queueOut hne
  obtain ⟨hin, hmax'⟩ := h.queueOut.2.count_queueIn d (h.not_full_queueOut hne)
  rw [Full, Full, hin, hmax', hmax, hout]

end LidaQueue

/-! ### Beside an ideal queue -/

/-- A call; the elements are not `NULL`. -/
inductive QueueOp where
  | queueIn (d : ℕ+)
  | queueOut

/-- The queue, the elements of an ideal one, and the number of elements taken out of that. -/
structure Paired where
  queue : LidaQueue
  stored : List ℕ+
  taken : ℕ

namespace Paired

/-- The same call on both queues. The ideal one has the capacity `max - 1`. -/
def step (max : ℕ) (s : Paired) : QueueOp → Option Paired
  | .queueIn d => some
      { s with
        queue := (s.queue.queueIn d).2
        stored := (Fifo.push (max - 1) s.stored d).getD s.stored }
  | .queueOut => some
      { queue := s.queue.queueOut.2
        stored := s.stored.tail
        taken := if s.stored = [] then s.taken else s.taken + 1 }

/-- The call has the result it has on the ideal queue: `queue_in` returns `-1` and changes
nothing if that refuses the element, and `0` otherwise; `queue_out` returns the oldest element,
or `NULL`. -/
def Agrees (max : ℕ) (s : Paired) : QueueOp → Prop
  | .queueIn d =>
    if Fifo.push (max - 1) s.stored d = none then s.queue.queueIn d = (-1, s.queue)
    else (s.queue.queueIn d).1 = 0
  | .queueOut => s.queue.queueOut.1 = (s.stored.map PNat.val).headD 0

/-- `queue_in` is not called while `max - 1` elements are stored, if the number of those taken
out so far is a multiple of `max`. -/
def Clear (max : ℕ) (s : Paired) : QueueOp → Prop
  | .queueIn _ => s.stored.length = max - 1 → ¬max ∣ s.taken
  | .queueOut => True

instance (max : ℕ) (s : Paired) (op : QueueOp) : Decidable (Clear max s op) :=
  match op with
  | .queueIn _ => inferInstanceAs (Decidable (_ → ¬_))
  | .queueOut => isTrue trivial

/-- Both queues after `queue_init`. -/
def start (max : ℕ) (h : 0 < max) : Paired where
  queue := LidaQueue.queueInit max h
  stored := []
  taken := 0

/-- The queue has the elements of the ideal one, and `tail` has moved once for each element
taken out. -/
structure Same (max : ℕ) (s : Paired) : Prop where
  max_eq : s.queue.max = max
  entries : s.queue.entries = s.stored.map PNat.val
  tail : s.queue.tail = s.taken % max

variable {max : ℕ} {s s' : Paired} {op : QueueOp}

theorem same_start (h : 0 < max) : Same max (start max h) :=
  ⟨rfl, rfl, (Nat.zero_mod max).symm⟩

/-- Both count the same entries. -/
theorem Same.length (h : Same max s) : s.stored.length = s.queue.count := by
  rw [← s.queue.length_entries, h.entries, List.length_map]

/-- The ring is full with one entry less than its slots. -/
theorem Same.full_iff (h : Same max s) : s.queue.Full ↔ s.stored.length = max - 1 := by
  rw [LidaQueue.Full, h.length, h.max_eq]

/-- The ideal queue refuses an element when the ring has no more than one slot free. -/
theorem Same.push_eq_none (h : Same max s) (d : ℕ+) :
    Fifo.push (max - 1) s.stored d = none ↔ s.queue.Full := by
  have hlt := s.queue.count_lt
  rw [← h.length, h.max_eq] at hlt
  rw [h.full_iff, Fifo.push]
  split_ifs with hroom
  · exact iff_of_false (by simp) (by omega)
  · exact iff_of_true rfl (by omega)

/-- The step lemma. -/
theorem Same.step (h : Same max s) (hclear : Clear max s op) (hstep : step max s op = some s') :
    Same max s' := by
  cases op with
  | queueIn d =>
    obtain rfl := Option.some.inj hstep
    by_cases hfull : s.queue.Full
    · have htail : s.queue.tail ≠ 0 := fun h0 =>
        hclear (h.full_iff.mp hfull) (Nat.dvd_of_mod_eq_zero (h.tail ▸ h0))
      rcases s.queue.queueIn_of_full d hfull with ⟨-, hin⟩ | ⟨h0, -⟩
      · rw [hin, (h.push_eq_none d).mpr hfull]
        exact ⟨h.max_eq, h.entries, h.tail⟩
      · exact absurd h0 htail
    · obtain ⟨-, hentries, htail, hmax⟩ := s.queue.queueIn_of_not_full d hfull
      have hpush : Fifo.push (max - 1) s.stored d = some (s.stored ++ [d]) := by
        rw [Fifo.push, if_pos]
        by_contra hroom
        exact hfull ((h.push_eq_none d).mp (by rw [Fifo.push, if_neg hroom]))
      refine ⟨by rw [hmax, h.max_eq], ?_, by rw [htail, h.tail]⟩
      rw [hentries, hpush, h.entries]
      simp
  | queueOut =>
    obtain rfl := Option.some.inj hstep
    cases hstored : s.stored with
    | nil =>
      have hnil : s.queue.entries = [] := by rw [h.entries, hstored, List.map_nil]
      rw [s.queue.queueOut_of_nil hnil]
      exact ⟨h.max_eq, by simpa using hnil, by simpa using h.tail⟩
    | cons x xs =>
      have hcons : s.queue.entries = (x : ℕ) :: xs.map PNat.val := by
        rw [h.entries, hstored, List.map_cons]
      obtain ⟨-, hentries, htail, hmax⟩ := s.queue.queueOut_of_cons hcons
      refine ⟨by rw [hmax, h.max_eq], by rw [hentries, List.tail_cons], ?_⟩
      rw [htail, Ring.next_eq_mod s.queue.tail_lt, h.max_eq, h.tail, Nat.mod_add_mod]
      simp

/-- **One call.** -/
theorem Same.agrees_iff (h : Same max s) : Agrees max s op ↔ Clear max s op := by
  cases op with
  | queueIn d =>
    rw [Agrees, Clear, ← h.full_iff]
    by_cases hfull : s.queue.Full
    · rw [if_pos ((h.push_eq_none d).mpr hfull)]
      rcases s.queue.queueIn_of_full d hfull with ⟨htail, hin⟩ | ⟨htail, hin, -⟩
      · refine iff_of_true hin fun _ hdvd => htail ?_
        rw [h.tail, Nat.mod_eq_zero_of_dvd hdvd]
      · refine iff_of_false (fun heq => ?_) fun hclear => ?_
        · rw [heq] at hin
          simp at hin
        · exact hclear hfull (Nat.dvd_of_mod_eq_zero (h.tail ▸ htail))
    · rw [if_neg fun hnone => hfull ((h.push_eq_none d).mp hnone)]
      exact iff_of_true (s.queue.queueIn_of_not_full d hfull).1 fun hfull' => absurd hfull' hfull
  | queueOut =>
    refine iff_of_true ?_ trivial
    rw [Agrees]
    cases hstored : s.stored with
    | nil =>
      have hnil : s.queue.entries = [] := by rw [h.entries, hstored, List.map_nil]
      rw [s.queue.queueOut_of_nil hnil]
      rfl
    | cons x xs =>
      have hcons : s.queue.entries = (x : ℕ) :: xs.map PNat.val := by
        rw [h.entries, hstored, List.map_cons]
      rw [(s.queue.queueOut_of_cons hcons).1]
      rfl

/-- **The queue against the ideal one.** The calls that all have the results of a bounded FIFO
are those where `queue_in` never meets a full queue whose oldest element is in slot 0. -/
theorem results_iff_clear (hmax : 2 ≤ max) (ops : List QueueOp) :
    Runs.Meets (step max) (Agrees max) (start max (by omega)) ops ↔
      Runs.Meets (step max) (Clear max) (start max (by omega)) ops :=
  Runs.meets_iff_meets (fun _ _ _ (h : Same max _) hclear hstep => h.step hclear hstep)
    (fun _ _ _ h _ => h.agrees_iff) (same_start _) ops

/-- In a queue of three slots, the elements go once around the ring. -/
theorem results_threeSlots :
    Runs.Meets (step 3) (Agrees 3) (start 3 (by decide))
      [.queueIn 5, .queueIn 6, .queueOut, .queueIn 7, .queueIn 8, .queueOut, .queueOut] :=
  (results_iff_clear (by decide) _).mpr (by decide)

/-- A queue of two slots takes a second element, and has lost both then. -/
theorem not_results_twoSlots :
    ¬∀ (max : ℕ) (hmax : 2 ≤ max) (ops : List QueueOp),
      Runs.Meets (step max) (Agrees max) (start max (by omega)) ops := by
  intro h
  have hrun := h 2 (by decide) [.queueIn 5, .queueIn 6]
  obtain ⟨-, hrest⟩ := hrun _ rfl
  have hsecond : (-1 : ℤ) = 0 := (congrArg Prod.fst (hrest _ rfl).1).symm
  exact absurd hsecond (by decide)

end Paired

end Lidas
